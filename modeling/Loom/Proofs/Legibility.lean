import Loom.Proofs.Binding
import Loom.Proofs.Wording

/-!
Modules that can be read again. The types that a module mentions are found by their names, no applied type is written
like the name of a type, and names are plain. Then whatever is mentioned can be read among the copies of its types.
-/
namespace Loom

open Program (Offers Title Readable Mirrors Orderly)
open GenericParam (declare getElem?_declare isMethod mem_declare)

namespace Operand

def refs : Operand → List TypeRef
  | .type t => [t]
  | .method (.plain r) => r.declaring :: r.returns :: r.params
  | .method (.applied r args) => r.declaring :: r.returns :: (r.params ++ args)
  | .field f => [f.declaring,f.fieldType]
  | _ => []

/-- The names in an operand are plain, and its numbers are those that can be read. -/
def Plain : Operand → Prop
  | .int n => -0x8000000000000000 ≤ n ∧ n < 0x8000000000000000
  | .method (.plain r) => r.name ≠ "" ∧ Text.isWord r.name = true
  | .method (.applied r args) => r.name ≠ "" ∧ Text.isWord r.name = true ∧ args ≠ []
  | .field f => f.name ≠ "" ∧ Text.isWord f.name = true
  | _ => True

end Operand

def Instruction.Plain (i : Instruction) : Prop := i.opcode ∈ Opcode.all ∧ i.operand.Plain

namespace Program

variable {p q s : Program} {home target : ModuleId} {t u : TypeRef} {scope : List GenericParam}

def methodRefs (p : Program) (m : MethodDecl) : List TypeRef :=
  m.returns :: m.paramTypes ++ match m.body with
    | none => []
    | some b => b.locals ++ b.code.flatMap fun i => (p.instructionAt i).operand.refs

/-- The references in a type and its members. -/
def typeRefs (p : Program) (t : TypeId) : List TypeRef :=
  let d := p.typeAt t
  d.base :: d.interfaces ++ d.fields.map FieldDecl.type ++
    (d.attributes.flatMap fun a => .decl a.type :: a.args.filterMap fun
      | .type t => some t
      | _ => none) ++
    d.methods.flatMap p.methodRefs

/-- Every type in the reference has a title and is the one that its full name finds, and no applied type in it is written
    like the name of a type. -/
structure Clear (p : Program) (home : ModuleId) (t : TypeRef) : Prop where
  titled : ∀ u ∈ t.parts, ∀ d, u.element? = some d → Title (p.fullName d)
  found : p.Found home t
  unmistaken : ∀ d args, .applied d args ∈ t.parts → p.findType? home ((TypeRef.applied d args).text p) = none

/-- A module that can be written and read again. -/
structure Legible (p : Program) (home : ModuleId) : Prop where
  orderly : Orderly p home
  references : ∀ h ∈ (p.moduleAt home).references, h.index < p.modules.size
  named : (p.moduleAt home).name ≠ ""
  version : ∀ v, (p.moduleAt home).version = some v → v.octets.length = 16
  void : (p.findType? home "System.Void").isSome = true
  clear : ∀ t ∈ p.allTypes home, ∀ u ∈ p.typeRefs t, p.Clear home u
  generics : ∀ t : TypeId, ((p.typeAt t).generics.length : Int) < arityLimit
  methodGenerics : ∀ m : MethodId, ((p.methodAt m).generics.length : Int) < arityLimit
  constructors : ∀ m : MethodId, m.owner ∈ p.allTypes home → (p.methodAt m).name = ".ctor" →
    (p.methodAt m).flags.has .isSpecialName = true
  numbers : ∀ t ∈ p.allTypes home, ∀ a ∈ (p.typeAt t).attributes, ∀ n : Int, .int n ∈ a.args →
    -0x8000000000000000 ≤ n ∧ n < 0x8000000000000000
  filled : ∀ m b, m.owner ∈ p.allTypes home → (p.methodAt m).body = some b → b.locals ≠ [] ∨ b.code ≠ []
  plain : ∀ m b, m.owner ∈ p.allTypes home → (p.methodAt m).body = some b → ∀ i ∈ b.code, (p.instructionAt i).Plain

theorem offers_declare {a : TypeId} (b : TypeId) (o o' : Owner) {names : List String} (own own' : List String)
    (method : o.isMethod = true)
    (method' : o'.isMethod = true) (length : own'.length = own.length) (few : (names.length : Int) < arityLimit)
    (fewer : (own.length : Int) < arityLimit) {g : GenericParam}
    (member : g ∈ declare (.type a) names ++ declare o own) :
    Offers ⟨declare (.type b) names,declare o' own'⟩ g := by
  rw [arityLimit] at few fewer
  rcases List.mem_append.mp member with ofType | ofMethod
  · obtain ⟨owner,at_⟩ := mem_declare.mp ofType
    have inside := (List.getElem?_eq_some_iff.mp at_).1
    refine ⟨by omega,⟨.type b,g.position,g.name⟩,?_,?_,rfl⟩
    · rw [isMethod,owner,Owner.isMethod,if_neg Bool.false_ne_true,getElem?_declare,at_]
      rfl
    · rw [isMethod,isMethod,owner]
      rfl
  · obtain ⟨owner,at_⟩ := mem_declare.mp ofMethod
    have inside := (List.getElem?_eq_some_iff.mp at_).1
    obtain ⟨name,other⟩ : ∃ name, own'[g.position]? = some name := ⟨_,List.getElem?_eq_getElem (by omega)⟩
    refine ⟨by omega,⟨o',g.position,name⟩,?_,?_,rfl⟩
    · rw [isMethod,owner,method,if_pos rfl,getElem?_declare,other]
      rfl
    · rw [isMethod,isMethod,owner,method]
      exact method'

theorem Mirrors.readable (mirrors : Mirrors p home target s) (listed : p.Listed) {scope' : ParamScope}
    (formed : p.Formed scope t) (clear : p.Clear home t) (offers : ∀ g ∈ scope, Offers scope' g) :
    Readable p s target scope' t := by
  intro u within
  have part := formed u within
  cases u with
  | absent => exact part.elim
  | decl d =>
    refine ⟨clear.titled _ within d rfl,?_⟩
    rw [mirrors.findType?_eq listed,clear.found _ within d rfl]
    rfl
  | param g => exact offers g part
  | applied d args =>
    refine ⟨clear.titled _ within d rfl,?_,p.place home d,?_,?_⟩
    · rw [mirrors.findType?_eq listed,clear.unmistaken d args within]
      rfl
    · rw [mirrors.findType?_eq listed,clear.found _ within d rfl]
      rfl
    · rw [mirrors.generics_place part.1]
      exact part.2

theorem isVoid_congr (spelled : u.spelling q = t.spelling p) (names : ∀ g h, t = .param g → u = .param h → h.name = g.name) :
    u.isVoid q = t.isVoid p := by
  have apart : ∀ name rest : String, (name ++ "<" ++ rest ++ ">" == "System.Void") = false := by
    intro name rest
    rw [beq_eq_false_iff_ne]
    intro same
    have last : (name ++ "<" ++ rest ++ ">").toList.getLast? = "System.Void".toList.getLast? := by rw [same]
    rw [String.toList_append,show ">".toList = ['>'] from rfl,List.getLast?_concat] at last
    exact absurd last (by decide)
  cases t with
  | absent => cases u <;> first | rfl | cases spelled
  | decl d =>
    cases u with
    | decl e =>
      rw [TypeRef.spelling,TypeRef.spelling,Spelling.name.injEq] at spelled
      rw [TypeRef.isVoid,TypeRef.isVoid,TypeRef.fullName,TypeRef.fullName,spelled]
      · rintro ⟨⟩
      · rintro ⟨⟩
    | _ => cases spelled
  | param g =>
    cases u with
    | param h =>
      rw [TypeRef.isVoid,TypeRef.isVoid,TypeRef.fullName,TypeRef.fullName,names g h rfl rfl]
      · rintro ⟨⟩
      · rintro ⟨⟩
    | _ => cases spelled
  | applied d args =>
    cases u with
    | applied e others =>
      rw [TypeRef.isVoid,TypeRef.isVoid,TypeRef.fullName,TypeRef.fullName,apart,apart]
      · rintro ⟨⟩
      · rintro ⟨⟩
    | _ => cases spelled

end Program
end Loom
