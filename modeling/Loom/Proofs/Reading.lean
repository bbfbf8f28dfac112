import Loom.Document.Expression
import Loom.Proofs.Formation
import Loom.Proofs.Runs

/-!
What reading yields. A text that can be read as a type, a method, a field or an instruction gives a reference that is
formed in the program it was read in; a lookup by name finds declared types only.
-/
namespace Loom

open List
open Loom.Except (bind_eq_ok mapError_eq_ok mapM_eq_ok)
open Text (trim)
open Text.Brackets (cut)

variable {line returnText text : List Char} {name s : String} {t : TypeId} {scope : ParamScope} {member : MemberText}
  {declaring : TypeRef} {r : MethodRef} {o : MethodOperand} {f : FieldRef} {i : Instruction} {label : Option String}

def ParamScope.all (scope : ParamScope) : List GenericParam := scope.typeParams ++ scope.methodParams

namespace Program

variable {p : Program} {home : ModuleId} {id : RefId}

theorem Listed.withNested (listed : p.Listed) {n : Nat} {u : TypeId} (inside : t.index < p.types.size)
    (member : u ∈ p.withNested n t) : u.index < p.types.size := by
  induction n generalizing t with
  | zero => cases member
  | succ n ih =>
    rw [Program.withNested] at member
    rcases mem_cons.mp member with same | deeper
    · rw [same]; exact inside
    · obtain ⟨v,nested,member⟩ := mem_flatMap.mp deeper
      exact ih (listed.nested t inside v nested) member

theorem Agree.allTypes_eq {q : Program} (agree : Agree TypeDecl.header p q) (modules : q.modules = p.modules) (home : ModuleId) :
    q.allTypes home = p.allTypes home := by
  have walks : ∀ n, q.withNested n = p.withNested n := by
    intro n
    induction n with
    | zero => rfl
    | succ n ih =>
      funext t
      rw [withNested,withNested,ih,agree.nested_eq]
  rw [allTypes,allTypes,agree.size_eq,walks,moduleAt,modules]
  rfl

theorem Listed.allTypes (listed : p.Listed) (member : t ∈ p.allTypes home) : t.index < p.types.size := by
  obtain ⟨top,first,member⟩ := mem_flatMap.mp member
  exact listed.withNested (listed.top home top first) member

theorem Listed.findOwnType? (listed : p.Listed) (found : p.findOwnType? home name = some t) : t.index < p.types.size :=
  listed.allTypes (mem_of_find?_eq_some found)

theorem Listed.findType? (listed : p.Listed) (found : p.findType? home name = some t) : t.index < p.types.size := by
  rcases Option.or_eq_some_iff.mp found with own | ⟨-,other⟩
  · exact listed.findOwnType? own
  · obtain ⟨_,-,found⟩ := exists_of_findSome?_eq_some other
    exact listed.findOwnType? found

theorem paramAt?_mem {params : List GenericParam} {digits : List Char} {t : TypeRef}
    (found : paramAt? params digits = some t) : ∃ g ∈ params, t = .param g := by
  rw [paramAt?] at found
  split at found
  · split at found
    · cases found
    · obtain ⟨g,at_,same⟩ := Option.map_eq_some_iff.mp found
      exact ⟨g,mem_of_getElem? at_,same.symm⟩
  · cases found

theorem Listed.readTypeWithin_formed (listed : p.Listed) {n : Nat} {t : TypeRef}
    (read : p.readTypeWithin home scope n text = .ok t) : p.Formed scope.all t := by
  induction n generalizing text t with
  | zero => cases read
  | succ n ih =>
    rw [readTypeWithin] at read
    split at read
    · cases read
    · split at read
      · next found =>
        cases read
        obtain ⟨g,member,rfl⟩ := paramAt?_mem found
        exact formed_param (mem_append_right _ member)
      · cases read
    · split at read
      · next found =>
        cases read
        obtain ⟨g,member,rfl⟩ := paramAt?_mem found
        exact formed_param (mem_append_left _ member)
      · cases read
    · split at read
      · next found =>
        cases read
        exact formed_decl (listed.findType? found)
      · simp only at read
        split at read
        · next absent _ =>
          simp only [readTypeName] at read
          split at read
          · next found =>
            cases read
            exact formed_decl (listed.findType? found)
          · cases read
        · next d inner reading =>
          obtain ⟨⟨head,rest⟩,-,named⟩ := exists_of_findSome?_eq_some reading
          obtain ⟨e,found,⟨⟩⟩ := Option.map_eq_some_iff.mp named
          split at read
          · cases read
          · next parts _ =>
            obtain ⟨args,each,read⟩ := bind_eq_ok.mp read
            obtain ⟨count,rfl⟩ := applyType_eq_ok.mp (mapError_eq_ok.mp read)
            refine formed_applied (listed.findType? found) count fun a member => ?_
            obtain ⟨part,-,read⟩ := left_of_forall₂ (mapM_eq_ok.mp each) member
            exact ih read

theorem Listed.readType_formed (listed : p.Listed) {t : TypeRef}
    (read : p.readType home scope text = .ok t) : p.Formed scope.all t :=
  listed.readTypeWithin_formed read

theorem readArity_args {tail : List Char} {arity : ArityText}
    (read : readArity s text = .ok (arity,tail)) (applied : arity.args.isEmpty = false) :
    arity.arity = arity.args.length := by
  unfold readArity at read
  split at read
  · simp only at read
    split at read
    · cases read
    · split at read
      · cases read; cases applied
      · cases read
  · split at read
    · cases read
    · split at read
      · cases read
      · cases read; rfl
  · cases read; cases applied

theorem readMember_args (read : readMember s text = .ok member)
    (applied : member.arity.args.isEmpty = false) : member.arity.arity = member.arity.args.length := by
  unfold readMember at read
  simp only at read
  split at read
  · cases read
  · split at read
    · cases read
    · next arityRead =>
      split at read
      · cases read
      · split at read
        · cases read
        · cases read
          exact readArity_args arityRead applied

def signatureScope (p : Program) (t : TypeId) (count : Nat) (id : RefId) : ParamScope :=
  ⟨p.typeParams t,GenericParam.declare (.reference id) ((List.range count).map fun i => "T" ++ toString i)⟩

def sought (member : MemberText) (declaring returns : TypeRef) (params : List TypeRef) (id : RefId) : MethodRef :=
  { name := String.ofList member.name
    declaring
    returns
    params
    generics := (List.range member.arity.arity.toNat).map fun i => "T" ++ toString i
    id }

theorem readMethodRef_eq_ok : p.readMethodRef home s declaring returnText member id = .ok r ↔
      ∃ d returns texts params found, declaring.element? = some d ∧
        p.readType home (p.signatureScope d member.arity.arity.toNat id) returnText = .ok returns ∧
        Text.Brackets.split ',' member.params = some texts ∧
        Forall₂ (fun text t => p.readType home (p.signatureScope d member.arity.arity.toNat id) text = .ok t) texts params ∧
        p.findMethod? d (sought member declaring returns params id) = some found ∧
        r = { sought member declaring returns params id with hasThis := !(p.methodAt found).isStatic } := by
  unfold readMethodRef
  simp only
  constructor
  · intro read
    obtain ⟨returns,returnsRead,read⟩ := bind_eq_ok.mp read
    split at read
    · cases read
    · next texts cut =>
      obtain ⟨params,paramsRead,read⟩ := bind_eq_ok.mp read
      split at read
      · cases read
      · next d element =>
        split at read
        · cases read
        · next found lookup =>
          cases read
          simp only [element] at returnsRead paramsRead
          exact ⟨d,returns,texts,params,found,element,mapError_eq_ok.mp returnsRead,cut,
            (mapM_eq_ok.mp paramsRead).imp fun _ _ read => mapError_eq_ok.mp read,lookup,rfl⟩
  · rintro ⟨d,returns,texts,params,found,element,returnsRead,cut,paramsRead,lookup,rfl⟩
    simp only [element]
    refine bind_eq_ok.mpr ⟨returns,mapError_eq_ok.mpr returnsRead,?_⟩
    rw [cut]
    refine bind_eq_ok.mpr ⟨params,mapM_eq_ok.mpr (paramsRead.imp fun _ _ read => mapError_eq_ok.mpr read),?_⟩
    rw [sought] at lookup
    simp only [lookup]
    rfl

theorem Listed.readMethodRef_formed (listed : p.Listed) {scope : List GenericParam} (formed : p.Formed scope declaring)
    (read : p.readMethodRef home s declaring returnText member id = .ok r) :
    (∃ d, p.MethodRefFormed scope r d) ∧ r.generics.length = member.arity.arity.toNat := by
  obtain ⟨d,returns,texts,params,found,element,returnsRead,-,paramsRead,lookup,rfl⟩ := readMethodRef_eq_ok.mp read
  refine ⟨⟨d,element,formed,.inr (listed.readType_formed returnsRead),fun t among => ?_,
    Option.isSome_iff_exists.mpr ⟨found,lookup⟩⟩,by simp [sought]⟩
  obtain ⟨text,-,read⟩ := left_of_forall₂ paramsRead among
  exact listed.readType_formed read

theorem readMethod_eq_ok : p.readMethod home scope s id = .ok o ↔
    ∃ returns rest, cut ' ' (trim s.toList) = some (returns,rest) ∧ ∃ type text, cutColons rest = some (type,text) ∧
      ∃ declaring, p.readType home scope type = .ok declaring ∧ ∃ member, readMember s text = .ok member ∧
      ∃ r, p.readMethodRef home s declaring returns member id = .ok r ∧ if member.arity.args.isEmpty then .plain r = o else
        ∃ args, member.arity.args.Forall₂ (fun text t => p.readType home scope text = .ok t) args ∧ .applied r args = o := by
  rw [readMethod]
  rcases cut ' ' (trim s.toList) with _ | ⟨returns,rest⟩
  · simp
  · rcases colons : cutColons rest with _ | ⟨type,text⟩
    · simp [colons]
    · simp only [Option.some.injEq,Prod.mk.injEq,↓existsAndEq,true_and,colons,bind_eq_ok,mapError_eq_ok]
      refine exists_congr fun declaring => and_congr_right fun _ => exists_congr fun member => and_congr_right fun _ =>
        exists_congr fun r => and_congr_right fun _ => ?_
      cases member.arity.args.isEmpty <;> simp [bind_eq_ok,mapM_eq_ok,mapError_eq_ok,pure,Except.pure]

theorem Listed.readMethod_formed (listed : p.Listed)
    (read : p.readMethod home scope s id = .ok o) : p.MethodOperandFormed scope.all o := by
  obtain ⟨_,_,-,_,_,-,declaring,declaringRead,member,memberRead,r,refRead,read⟩ := readMethod_eq_ok.mp read
  obtain ⟨ref,count⟩ := listed.readMethodRef_formed (listed.readType_formed declaringRead) refRead
  split at read
  · rwa [← read]
  · next some =>
    obtain ⟨args,each,rfl⟩ := read
    refine ⟨ref,?_,fun t among => ?_⟩
    · rw [count,readMember_args memberRead (Bool.eq_false_iff.mpr some),Int.toNat_natCast,each.length_eq]
    · obtain ⟨text,-,read⟩ := left_of_forall₂ each among
      exact listed.readType_formed read

theorem readField_eq_ok : p.readField home scope s = .ok f ↔
    ∃ text rest, cut ' ' (trim s.toList) = some (text,rest) ∧ ∃ type name, cutColons rest = some (type,name) ∧
      name.isEmpty = false ∧ ∃ declaring, p.readType home scope type = .ok declaring ∧ ∃ d, declaring.element? = some d ∧
        ((p.typeAt d).field? (String.ofList name)).isSome = true ∧
        ∃ t, p.readType home ⟨p.typeParams d,[]⟩ text = .ok t ∧ ⟨String.ofList name,t,declaring⟩ = f := by
  rw [readField]
  rcases cut ' ' (trim s.toList) with _ | ⟨text,rest⟩
  · simp
  · rcases colons : cutColons rest with _ | ⟨type,name⟩
    · simp [colons]
    · simp only [Option.some.injEq,Prod.mk.injEq,↓existsAndEq,true_and,colons]
      cases name.isEmpty with
      | true => simp
      | false =>
        simp only [Bool.false_eq_true,if_false,true_and,bind_eq_ok]
        refine exists_congr fun declaring => and_congr_right fun _ => ?_
        cases declaring.element? with
        | none => simp
        | some d => cases found : (p.typeAt d).field? (String.ofList name) <;> simp [found,bind_eq_ok,pure,Except.pure]

theorem Listed.readField_formed (listed : p.Listed)
    (read : p.readField home scope s = .ok f) : ∃ d, p.FieldRefFormed scope.all f d := by
  obtain ⟨_,_,-,_,_,-,-,declaring,declaringRead,d,element,present,t,typeRead,rfl⟩ := readField_eq_ok.mp read
  refine ⟨d,element,listed.readType_formed declaringRead,?_,present⟩
  have formed := listed.readType_formed typeRead
  rwa [ParamScope.all,append_nil] at formed

section

variable (p home) (scope : ParamScope) (text : List Char) (id : RefId)

/-- What the text of an operand is read as, for an operation that takes a given kind. A branch waits for its label. -/
inductive OperandRead : OperandKind → Operand → Option String → Prop where
  | none : text = [] → OperandRead .none .none none
  | int {n : Int} : Text.Decimal.parse text = .ok n → OperandRead .int (.int n) none
  | text {t : Text.Octets} : Text.Quoted.decode text = some t → OperandRead .text (.text t) none
  | type {t : TypeRef} : p.readType home scope text = .ok t → OperandRead .type (.type t) none
  | method {o : MethodOperand} : p.readMethod home scope (String.ofList text) id = .ok o → OperandRead .method (.method o) none
  | field {f : FieldRef} : p.readField home scope (String.ofList text) = .ok f → OperandRead .field (.field f) none
  | branch : text ≠ [] → OperandRead .branch .none (some (String.ofList text))

end

theorem readInstruction_eq_ok : p.readInstruction home scope line id = .ok (i,label) ↔
      Opcode.ofName? (String.ofList ((trim line).takeWhile (· ≠ ' '))) = some i.opcode ∧
        OperandRead p home scope (trim (((trim line).dropWhile (· ≠ ' ')).drop 1)) id i.opcode.operandKind i.operand label := by
  unfold readInstruction
  simp only
  generalize trim (((trim line).dropWhile (· ≠ ' ')).drop 1) = text
  constructor
  · intro read
    split at read
    · next opcode named =>
      split at read
      · next kind =>
        split at read <;> cases read
        exact ⟨named,kind ▸ .none (List.isEmpty_iff.mp ‹_›)⟩
      · next kind =>
        split at read <;> cases read
        exact ⟨named,kind ▸ .int ‹_›⟩
      · next kind =>
        split at read <;> cases read
        exact ⟨named,kind ▸ .text ‹_›⟩
      · next kind =>
        obtain ⟨t,typeRead,⟨⟩⟩ := bind_eq_ok.mp read
        exact ⟨named,kind ▸ .type (mapError_eq_ok.mp typeRead)⟩
      · next kind =>
        split at read <;> cases read
        exact ⟨named,kind ▸ .method ‹_›⟩
      · next kind =>
        obtain ⟨f,fieldRead,⟨⟩⟩ := bind_eq_ok.mp read
        exact ⟨named,kind ▸ .field (mapError_eq_ok.mp fieldRead)⟩
      · next kind =>
        split at read <;> cases read
        exact ⟨named,kind ▸ .branch (mt List.isEmpty_iff.mpr ‹_›)⟩
    · cases read
  · rintro ⟨named,operand⟩
    obtain ⟨opcode,o⟩ := i
    simp only [named]
    generalize Opcode.operandKind _ = kind at operand
    cases operand with
    | none empty => rw [empty]; rfl
    | branch filled => exact if_neg (mt List.isEmpty_iff.mp filled)
    | _ read => simp only [read]; rfl

/-- An instruction that can be read is of the kind its operation takes, unless it is a branch that still waits for its
    label. -/
theorem Listed.readInstruction_formed (listed : p.Listed)
    (read : p.readInstruction home scope line id = .ok (i,label)) (b : Body) :
    (label = none ∧ i.operand.kind = i.opcode.operandKind ∧ p.OperandFormed scope.all b i.operand) ∨
      (label.isSome = true ∧ i.opcode.operandKind = .branch) := by
  obtain ⟨opcode,o⟩ := i
  have operand := (readInstruction_eq_ok.mp read).2
  generalize Opcode.operandKind _ = kind at operand ⊢
  cases operand with
  | branch _ => exact .inr ⟨rfl,rfl⟩
  | type inner => exact .inl ⟨rfl,rfl,listed.readType_formed inner⟩
  | method inner => exact .inl ⟨rfl,rfl,listed.readMethod_formed inner⟩
  | field inner => exact .inl ⟨rfl,rfl,listed.readField_formed inner⟩
  | _ => exact .inl ⟨rfl,rfl,trivial⟩

theorem readMethod_id (read : p.readMethod home scope s id = .ok o) : o.ref.id = id := by
  obtain ⟨_,_,-,_,_,-,_,-,member,-,r,refRead,read⟩ := readMethod_eq_ok.mp read
  obtain ⟨_,_,_,_,_,-,-,-,-,-,rfl⟩ := readMethodRef_eq_ok.mp refRead
  split at read
  · rw [← read]
    rfl
  · obtain ⟨args,-,rfl⟩ := read
    rfl

theorem readInstruction_reference (read : p.readInstruction home scope line id = .ok (i,label)) :
    ∀ r ∈ i.operand.reference?, r = id := by
  obtain ⟨opcode,o⟩ := i
  have operand := (readInstruction_eq_ok.mp read).2
  generalize Opcode.operandKind _ = kind at operand
  cases operand with
  | method inner =>
    intro r held
    rw [← Option.some.inj held]
    exact readMethod_id inner
  | _ => exact nofun

theorem readLiteral_ne_type (text : List Char) (t : TypeRef) : readLiteral text ≠ .ok (.type t) := by
  unfold readLiteral
  split
  · split <;> simp
  · simp only
    split
    · simp
    · split
      · simp
      · split <;> simp

theorem Listed.readAttributeArg_formed (listed : p.Listed) {t : TypeRef}
    (read : p.readAttributeArg home s = .ok (.type t)) : p.Formed [] t := by
  unfold readAttributeArg at read
  simp only at read
  split at read
  · split at read
    · obtain ⟨u,typeRead,⟨⟩⟩ := Except.map_eq_ok.mp read
      exact listed.readType_formed typeRead
    · exact absurd read (readLiteral_ne_type _ _)
  · exact absurd read (readLiteral_ne_type _ _)

end Program
end Loom
