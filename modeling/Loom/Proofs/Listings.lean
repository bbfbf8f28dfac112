import Loom.Listing
import Loom.Proofs.CloneBodies
import Loom.Proofs.Likeness

/-!
Listings of types that are written alike. A listing shows names, signatures and the places of instructions in their
bodies, so two programs list a type in the same lines if its declarations and the transcripts of its bodies are written
alike.
-/
namespace Loom

open Program
open Document.Transcript List

variable {α β γ δ : Type} {p : Program} {u : Transcript} {start : Nat}

theorem Program.readInstruction_straight {home : ModuleId} {scope : ParamScope} {line : List Char} {i : Instruction}
    {id : RefId} (read : p.readInstruction home scope line id = .ok (i,none)) (target : InstructionId) :
    i.operand ≠ .branch target := by
  obtain ⟨-,operand⟩ := readInstruction_eq_ok.mp read
  generalize i.opcode.operandKind = kind, i.operand = o at operand
  cases operand <;> rintro ⟨⟩

namespace Document

variable {b q r : Program} {home : ModuleId} {scope : ParamScope} {t : Transcript}

/-- Only the instructions that wait for a label are branches. -/
def Transcript.Straight (t : Transcript) : Prop := ∀ x ∈ t.items, x.2 = none → ∀ target, x.1.operand ≠ .branch target

theorem Transcript.straight_of_reads {lines : List String} {m : MethodId}
    (read : lines.foldlM (Transcript.read b home m scope) {} = some t) : t.Straight := by
  intro x among
  obtain ⟨k,at_⟩ := mem_iff_getElem?.mp among
  refine forall_items (P := fun _ x => x.2 = none → ∀ target, x.1.operand ≠ .branch target) (fun line n x parsed waits => ?_)
    read nofun k x at_
  obtain ⟨i,label⟩ := x
  cases waits
  exact readInstruction_straight parsed

/-- An instruction as it is listed. A branch shows the place of its label. -/
def Transcript.shown (p : Program) (t : Transcript) (x : Instruction × Option String) : String :=
  match x.2 with
  | some label => x.1.opcode.name ++ " " ++ Text.Decimal.padded 4 ((t.labels.lookup label).getD 0 : Nat)
  | none => x.1.opcode.name ++ p.operandText x.1.operand

theorem lastIndexOf?_block {length k : Nat} (inside : k < length) (locals : List TypeRef) (initLocals : Bool) :
    (⟨locals,block start length,initLocals⟩ : Body).lastIndexOf? ⟨start + k⟩ = some k := by
  have member : (⟨start + k⟩ : InstructionId) ∈ block start length := mem_block.mpr ⟨by simp,by simpa using inside⟩
  obtain ⟨j,found⟩ := Body.exists_lastIndexOf? (b := ⟨locals,block start length,initLocals⟩) member
  have place : (block start length)[j]? = some ⟨start + k⟩ := Body.getElem?_of_lastIndexOf? found
  have within : j < length := by simpa [block] using (List.getElem?_eq_some_iff.mp place).1
  rw [getElem?_block within] at place
  have same : start + j = start + k := by simpa using place
  rw [found,Nat.add_left_cancel same]

theorem instructionLine_settle (closed : t.Closed) (straight : t.Straight) {i : InstructionId}
    {x : Instruction × Option String} (among : x ∈ t.items) (here : q.instructionAt i = t.settle start x)
    (locals : List TypeRef) (initLocals : Bool) :
    q.instructionLine ⟨locals,block start t.items.length,initLocals⟩ i = t.shown q x := by
  obtain ⟨d,label⟩ := x
  rw [instructionLine,here,shown]
  cases label with
  | none =>
    have plain := straight (d,none) among rfl
    simp only [settle]
  | some name =>
    obtain ⟨k,lookup,inside⟩ := closed (d,some name) among name rfl
    simp only [settle,lookup,Option.getD_some,lastIndexOf?_block inside]

theorem map_instructionLine (closed : t.Closed) (straight : t.Straight)
    (items : ∀ k x, t.items[k]? = some x → q.instructionAt ⟨start + k⟩ = t.settle start x) (locals : List TypeRef)
    (initLocals : Bool) :
    (block start t.items.length).map (q.instructionLine ⟨locals,block start t.items.length,initLocals⟩) =
      t.items.map (t.shown q) := by
  refine List.ext_getElem? fun k => ?_
  rw [List.getElem?_map,List.getElem?_map]
  cases at_ : t.items[k]? with
  | none =>
    have outside : t.items.length ≤ k := List.getElem?_eq_none_iff.mp at_
    rw [List.getElem?_eq_none (by simpa [block] using outside)]
    rfl
  | some x =>
    rw [getElem?_block (List.getElem?_eq_some_iff.mp at_).1,Option.map_some,Option.map_some,
      instructionLine_settle closed straight (List.mem_of_getElem? at_) (items k x at_)]

theorem Transcript.Alike.map_shown (alike : t.Alike p q u) : u.items.map (u.shown q) = t.items.map (t.shown p) := by
  refine map_eq_of_forall₂ (alike.items.imp fun x y both => ?_)
  rw [shown,shown,both.1,both.2.1,both.2.2,alike.labels]

theorem Transcript.shown_of_names (names : q.fullName = p.fullName) : t.shown q = t.shown p := by
  funext x
  rw [shown,shown,operandText_of_names names]

end Document

/-- Bodies of two programs that are listed in the same lines. -/
structure TwinBodies (p q : Program) (b c : Body) : Prop where
  locals : c.locals.map (·.spelling q) = b.locals.map (·.spelling p)
  code : c.code.map (q.instructionLine c) = b.code.map (p.instructionLine b)

namespace Program

variable {p q : Program} {t u : TypeId}

theorem map_congr_of_map {f : α → γ} {g : β → γ} {f' : α → δ} {g' : β → δ}
    (finer : ∀ {x y}, g y = f x → g' y = f' x) {xs : List α} {ys : List β} (same : ys.map g = xs.map f) :
    ys.map g' = xs.map f' :=
  map_eq_of_forall₂ ((forall₂_of_map_eq same).imp fun _ _ => finer)

theorem methodLines_alike {d e : MethodDecl} (twins : TwinMethods p q d e) (bodies : Option.Rel (TwinBodies p q) d.body e.body)
    (indent : String) : q.methodLines indent e = p.methodLines indent d := by
  rw [methodLines,methodLines]
  simp only [twins.name,twins.flags,twins.generics,twins.native,TypeRef.signatureText_congr twins.returns,
    texts_congr twins.paramTypes]
  cases first : d.body with
  | none =>
    rw [first] at bodies
    cases second : e.body with
    | none => rfl
    | some c =>
      rw [second] at bodies
      cases bodies
  | some b =>
    rw [first] at bodies
    cases second : e.body with
    | none =>
      rw [second] at bodies
      cases bodies
    | some c =>
      rw [second] at bodies
      cases bodies with
      | some alike =>
        have texts : c.locals.map (·.signatureText q) = b.locals.map (·.signatureText p) :=
          map_congr_of_map TypeRef.signatureText_congr alike.locals
        refine congrArg₂ (· ++ ·) (congrArg (cons _) ?_) ?_
        · exact map_zipIdx_congr (fun t i => indent ++ "  .local " ++ toString i ++ " " ++ t) (fun _ _ => rfl)
            (fun _ _ => rfl) texts
        · exact map_zipIdx_congr (fun c i => indent ++ "  " ++ Text.Decimal.padded 4 i ++ " " ++ c) (fun _ _ => rfl)
            (fun _ _ => rfl) alike.code

theorem typeHeadLines_alike (name : q.fullName u = p.fullName t) (twins : TwinTypes p q (p.typeAt t) (q.typeAt u))
    (bodies : ∀ k, k < (p.typeAt t).methods.length →
      Option.Rel (TwinBodies p q) (p.methodAt ⟨t,k⟩).body (q.methodAt ⟨u,k⟩).body)
    (indent : String) : q.typeHeadLines indent u = p.typeHeadLines indent t := by
  have methods : (q.typeAt u).methods.flatMap (q.methodLines (indent ++ "  ")) =
      (p.typeAt t).methods.flatMap (p.methodLines (indent ++ "  ")) := by
    rw [flatMap_def,flatMap_def]
    congr 1
    refine ext_getElem (by simp [twins.methods.length_eq]) fun k there here => ?_
    rw [length_map] at there here
    rw [getElem_map,getElem_map]
    have rel := bodies k here
    rw [methodAt_eq_of_getElem? (getElem?_eq_getElem here),
      methodAt_eq_of_getElem? (getElem?_eq_getElem there)] at rel
    exact methodLines_alike (Forall₂.get twins.methods here there) rel _
  have attributes {α : Type} (f : String × List String → α) :
      ((q.typeAt u).attributes.map fun a => f (q.fullName a.type,a.args.map (·.written q))) =
        (p.typeAt t).attributes.map fun a => f (p.fullName a.type,a.args.map (·.written p)) :=
    map_congr_of_map (congrArg f) twins.attributes
  have fields {α : Type} (f : String × String × Bool → α) :
      ((q.typeAt u).fields.map fun x => f (x.name,x.type.signatureText q,x.isStatic)) =
        (p.typeAt t).fields.map fun x => f (x.name,x.type.signatureText p,x.isStatic) := by
    refine map_congr_of_map (fun same => ?_) twins.fields
    rw [Prod.mk.injEq,Prod.mk.injEq] at same
    rw [same.1,TypeRef.signatureText_congr same.2.1,same.2.2]
  have interfaces : (q.typeAt u).interfaces.isEmpty = (p.typeAt t).interfaces.isEmpty := by
    have length := congrArg length twins.interfaces
    rw [length_map,length_map] at length
    rw [Bool.eq_iff_iff,isEmpty_iff_length_eq_zero,isEmpty_iff_length_eq_zero,length]
  rw [typeHeadLines,typeHeadLines]
  simp only [name,methods,twins.flags,twins.generics,TypeRef.isAbsent_congr twins.base,TypeRef.text_congr twins.base,
    texts_congr twins.interfaces,interfaces]
  congr 2
  · congr 1
    have custom := attributes fun x => indent ++ "  .custom " ++ x.1 ++
      (if x.2.isEmpty then "" else "(" ++ ", ".intercalate x.2 ++ ")")
    simpa using custom
  · exact fields fun x => indent ++ "  .field " ++ (if x.2.2 then "static " else "") ++ x.2.1 ++ " " ++ x.1

end Program

namespace Document

variable {p q p' q' : Program} {home : ModuleId}

theorem twinBodies_of_spoken (kin : Kindred home p q) (pending other : PendingMethod) (doc : other.doc = pending.doc)
    (owners : HeadersAlike p q pending.id.owner other.id.owner)
    (twins : TwinMethods p q (p.methodAt pending.id) (q.methodAt other.id)) (names : p'.fullName = p.fullName)
    (names' : q'.fullName = q.fullName) (here : Spoken p home pending p') (there : Spoken q home other q') :
    Option.Rel (TwinBodies p' q') (p'.methodAt pending.id).body (q'.methodAt other.id).body := by
  rcases here with ⟨bodiless,body⟩ | ⟨filled,locals,t,start,recites,body,items⟩
  · rcases there with ⟨-,body'⟩ | ⟨filled',-⟩
    · rw [body,body']
      exact .none
    · rw [doc,bodiless] at filled'
      cases filled'
  · rcases there with ⟨bodiless,-⟩ | ⟨-,locals',u,start',recites',body',items'⟩
    · rw [doc,filled] at bodiless
      cases bodiless
    · obtain ⟨_,_,again,spelled,alike⟩ := recites_alike kin recites other doc owners twins
      obtain ⟨rfl,rfl⟩ := again.unique recites'
      have straight : t.Straight := straight_of_reads recites.lines
      have straight' : u.Straight := straight_of_reads recites'.lines
      rw [body,body']
      refine .some ⟨?_,?_⟩
      · rw [funext (TypeRef.spelling_of_names names),funext (TypeRef.spelling_of_names names')]
        exact spelled
      · rw [map_instructionLine recites.closed straight fun k x at_ => (items k x at_).2,
          map_instructionLine recites'.closed straight' fun k x at_ => (items' k x at_).2,
          shown_of_names names,shown_of_names names',alike.map_shown]

end Document
end Loom
