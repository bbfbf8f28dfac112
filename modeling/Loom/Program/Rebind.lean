import Loom.Program.Lookup

/-!
References built from declarations, and generic parameters moved from one owner to another.
-/
namespace Loom

/-- An argument list whose length disagrees with the parameter list it is for. -/
structure CountMismatch where
  what : String
  expected : Nat
  got : Nat
  deriving DecidableEq

def CountMismatch.message (e : CountMismatch) : String :=
  "generic parameter count mismatch for " ++ e.what ++ ": expecting " ++ toString e.expected ++
    ", got " ++ toString e.got

/-- Applies a method reference to type arguments, as many as it has parameters. -/
def MethodRef.apply (r : MethodRef) (args : List TypeRef) : Except CountMismatch MethodOperand :=
  if r.generics.length = args.length then .ok (.applied r args)
  else .error ⟨r.name,r.generics.length,args.length⟩

namespace Program

/-- Applies a type to arguments, as many as it has parameters. -/
def applyType (p : Program) (t : TypeId) (args : List TypeRef) : Except CountMismatch TypeRef :=
  let expected := (p.typeAt t).generics.length
  if expected = args.length then .ok (.applied t args) else .error ⟨p.fullName t,expected,args.length⟩

/-- The type as seen from inside: applied to its own parameters if it has any. -/
def selfReference (p : Program) (t : TypeId) : TypeRef :=
  if (p.typeAt t).isGeneric then .applied t ((p.typeParams t).map .param) else .decl t

/-- Moves a parameter of one owner onto another owner's parameters, `skip` positions lower. A parameter without a
    counterpart stays. -/
def rebindParam (p : Program) (source target : Owner) (skip : Int) (g : GenericParam) : TypeRef :=
  if g.owner = source then
    let i := (g.position : Int) - skip
    if i < 0 then .param g else ((p.paramsOf target)[i.toNat]?.map .param).getD (.param g)
  else .param g

/-- Moves the parameters of one owner onto another owner's parameters, `skip` positions lower. -/
def rebind (p : Program) (source target : Owner) (skip : Int) (t : TypeRef) : TypeRef :=
  t.mapParams (p.rebindParam source target skip)

/-- Moves parameters between owners that can be missing. With one missing nothing moves. -/
def rebindBetween (p : Program) (source target : Option Owner) (skip : Int) (t : TypeRef) : TypeRef :=
  match source, target with
  | some a, some b => p.rebind a b skip t
  | _, _ => t

/-- Moves the parameters of one owner onto another owner's. There is no answer where a parameter has to move and has
    no owner to move to. -/
def rebindOwner? (p : Program) (source target : Option Owner) (t : TypeRef) : Option TypeRef :=
  match source, target with
  | some a, none => if (t.mapParams fun g => if g.owner = a then .absent else .param g) == t then some t else none
  | _, _ => some (p.rebindBetween source target 0 t)

/-- A reference to a method through a declaring type. In its signature the method's parameters become its own. -/
def refOn (p : Program) (m : MethodId) (declaring : TypeRef) (id : RefId := default) : MethodRef :=
  let d := p.methodAt m
  let own := GenericParam.declare (.reference id) d.generics
  { name := d.name
    declaring
    returns := d.returns.rebindParams (.method m) own
    params := d.paramTypes.map (TypeRef.rebindParams (.method m) own)
    generics := d.generics
    hasThis := !d.isStatic
    id }

def ref (p : Program) (m : MethodId) : MethodRef := p.refOn m (p.selfReference m.owner)

def fieldRef (p : Program) (t : TypeId) (f : FieldDecl) : FieldRef := ⟨f.name,f.type,p.selfReference t⟩

end Program
end Loom
