import Loom.Machine.State

/-!
Types at run time: bases, zero values, fresh objects and the types that values have.
-/
namespace Loom.Machine

open Run

/-- The base of a type applied to arguments, with its own arguments. -/
def base? (p : Program) (t : TypeId) (args : List TypeRef) : Option (TypeId × List TypeRef) :=
  let base := ({ typeArgs := args } : Context).subst (p.typeAt t).base
  base.element?.map (·,base.arguments)

/-- What a search finds first in a type and the bases above it. The search gives up after so many types. -/
def searchBases {α : Type} (p : Program) (f : TypeId → List TypeRef → Option α) :
    Nat → TypeId → List TypeRef → Option (Option α)
  | 0, _, _ => none
  | n + 1, t, args =>
    match f t args with
    | some a => some (some a)
    | none =>
      match base? p t args with
      | some (base,args) => searchBases p f n base args
      | none => some none

/-- Adds the fields of a type, each set to zero. Of fields with one name the first counts. -/
def addFields (zero : TypeRef → Heap → Option (Value × Heap)) :
    List FieldDecl → List (String × Value) → Heap → Option (List (String × Value) × Heap)
  | [], done, h => some (done,h)
  | f :: rest, done, h =>
    if (done.lookup f.name).isSome then addFields zero rest done h
    else do
      let (v,h) ← zero f.type h
      addFields zero rest (done ++ [(f.name,v)]) h

mutual
/-- The value of a fresh slot of a type: zero, false, null or, for a value type, an object of its own. -/
def zeroWithin (p : Program) : Nat → TypeRef → Heap → Option (Value × Heap)
  | 0, _, _ => none
  | n + 1, t, h =>
    match t.element? with
    | none => some (.null,h)
    | some d =>
      match p.fullName d with
      | "System.Int32" => some (.int 0,h)
      | "System.Boolean" => some (.bool false,h)
      | "System.Void" => some (.null,h)
      | _ => if (p.typeAt d).isValueType then newObjectWithin p n d t.arguments h else some (.null,h)
/-- A fresh object of a type with every field set to zero. -/
def newObjectWithin (p : Program) : Nat → TypeId → List TypeRef → Heap → Option (Value × Heap)
  | 0, _, _, _ => none
  | n + 1, t, args, h => do
    let (fields,h) ← zeroFieldsWithin p n t args [] h
    return h.addObject ⟨t,args,fields⟩
def zeroFieldsWithin (p : Program) : Nat → TypeId → List TypeRef → List (String × Value) → Heap →
    Option (List (String × Value) × Heap)
  | 0, _, _, _, _ => none
  | n + 1, t, args, done, h => do
    let (done,h) ← addFields (fun t => zeroWithin p n (({ typeArgs := args } : Context).subst t))
      ((p.typeAt t).fields.filter (!·.isStatic)) done h
    match base? p t args with
    | some (base,args) => zeroFieldsWithin p n base args done h
    | none => return (done,h)
end

/-- The type of that name, as it was when it was first looked up. -/
def typeNamed (p : Program) (home : ModuleId) (name : String) : Run (Option TypeId) := do
  match (← get).types.lookup name with
  | some found => return found
  | none =>
    let found := p.findType? home name
    modify fun s => { s with types := (name,found) :: s.types }
    return found

/-- The type of a value, with its arguments. Addresses have the type of any object. -/
def runtimeType (p : Program) (home : ModuleId) (v : Value) : Run (Option (TypeId × List TypeRef)) := do
  let named (name : String) (args : List TypeRef) : Run (Option (TypeId × List TypeRef)) :=
    return (← typeNamed p home name).map (·,args)
  match v with
  | .int _ => named "System.Int32" []
  | .bool _ => named "System.Boolean" []
  | .text _ => named "System.String" []
  | .list l => named "System.Collections.Generic.List" [((← heap).listAt l).element]
  | .object o =>
    let d := (← heap).objectAt o
    return some (d.type,d.args)
  | _ => named "System.Object" []

def searchType {α : Type} (p : Program) (home : ModuleId) (f : TypeId → List TypeRef → Option α) (n : Nat) (v : Value) :
    Run (Option α) := do
  match ← runtimeType p home v with
  | some (t,args) => orUnbounded (searchBases p f n t args)
  | none => return none

/-- The value can be seen as a type: the type is one of its bases or interfaces, any object, or unknown. -/
def isAssignable (p : Program) (home : ModuleId) (n : Nat) (v : Value) (target : TypeRef) : Run Bool := do
  match target.element? with
  | none => return true
  | some want =>
    if p.fullName want = "System.Object" then return true
    return (← searchType p home (fun t _ => if t = want || p.implements t want then some () else none) n v).isSome

/-- The first method of a type with that name, number of parameters and binding. -/
def findByArity? (p : Program) (t : TypeId) (name : String) (count : Nat) (isStatic : Bool) : Option MethodId :=
  (p.methodsNamed t name).find? fun m =>
    let d := p.methodAt m
    d.params.length == count && d.isStatic == isStatic

/-- The method that a reference names on a type. Where no signature agrees, the only one of that name and arity. -/
def resolveOn? (p : Program) (t : TypeId) (r : MethodRef) : Option MethodId :=
  (p.findMethod? t r).or <|
    match (p.methodsNamed t r.name).filter fun m =>
      let d := p.methodAt m
      d.params.length == r.params.length && d.generics.length == r.generics.length with
    | [m] => some m
    | _ => none

/-- The method of a type that can stand for a virtual one. -/
def override? (p : Program) (target : MethodDecl) (t : TypeId) : Option MethodId :=
  (p.methodsNamed t target.name).find? fun m =>
    let d := p.methodAt m
    !d.isAbstract && !d.isStatic && (d.body.isSome || !d.native.isEmpty) &&
      d.params.length == target.params.length && d.generics.length == target.generics.length

def dispatch (p : Program) (home : ModuleId) (n : Nat) (v : Value) (target : MethodDecl) :
    Run (Option (MethodId × List TypeRef)) :=
  searchType p home (fun t args => (override? p target t).map (·,args)) n v

end Loom.Machine
