import Loom.Error

/-!
Scopes. A scope binds the first generic parameter of a type to the type that a specialization is for, and names the
clone that takes the parameters left over. Scopes chain from the innermost nesting level outwards.
-/
namespace Loom

/-- The first parameter of `owner` stands for `target` in `produced`. -/
structure Scope where
  owner : TypeId
  target : TypeRef
  produced : TypeId
  deriving BEq, Inhabited

namespace Scope

def binds (s : Scope) (g : GenericParam) : Bool := g.owner == .type s.owner && g.position == 0

/-- What a chain makes of a parameter: the innermost binding counts, and a parameter without one stays. -/
def resolveParam (chain : List Scope) (g : GenericParam) : TypeRef :=
  match chain.find? (·.binds g) with
  | some s => s.target
  | none => .param g

def resolve (chain : List Scope) (t : TypeRef) : TypeRef := t.mapParams (resolveParam chain)

end Scope

namespace Program

def scope? (p : Program) (owner : TypeId) (target : TypeRef) (produced : TypeId) : Option Scope :=
  if (p.typeAt owner).isGeneric then some ⟨owner,target,produced⟩ else none

/-- Moves the parameters left over in the types of a chain onto their clones. A clone lacks the bound parameter, so
    positions are one lower. -/
def rebindScoped (p : Program) (chain : List Scope) (t : TypeRef) : TypeRef :=
  chain.foldl (fun t s => p.rebind (.type s.owner) (.type s.produced) 1 t) t

/-- An applied type with its arguments redirected: the first clone made for its declaration and first argument takes
    its place, with the arguments that follow. -/
def redirectApplied (p : Program) (element : TypeId) (args : List TypeRef) : List Scope → Except Failure TypeRef
  | [] => .ok (.applied element args)
  | s :: family =>
    if s.owner = element then
      match args with
      | [] => .error (.crash .noElement)
      | first :: trailing =>
        if p.same first s.target then
          if trailing.isEmpty && !(p.typeAt s.produced).isGeneric then .ok (.decl s.produced)
          else (p.applyType s.produced trailing).mapError (.countAt (p.fullName s.produced))
        else p.redirectApplied element args family
    else p.redirectApplied element args family

mutual
/-- Redirects applied types to the clones of a family, innermost applications first. -/
def redirect (p : Program) (family : List Scope) : TypeRef → Except Failure TypeRef
  | .applied element args => do p.redirectApplied element (← redirectList p family args) family
  | t => .ok t
def redirectList (p : Program) (family : List Scope) : List TypeRef → Except Failure (List TypeRef)
  | [] => .ok []
  | a :: as => do return (← redirect p family a) :: (← redirectList p family as)
end

end Program
end Loom
