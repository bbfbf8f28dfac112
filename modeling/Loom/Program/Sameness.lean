import Loom.Program.Names

/-!
Sameness of type references. Two references are the same when they name the same declarations and parameters;
in signatures, parameters are compared by position alone.
-/
namespace Loom.Program

def sameDecl (p : Program) (a b : TypeId) : Bool := a == b || p.fullName a == p.fullName b

mutual
/-- The references name the same type. -/
def same (p : Program) : TypeRef → TypeRef → Bool
  | .absent, .absent => true
  | .decl a, .decl b => p.sameDecl a b
  | .param a, .param b => a.owner == b.owner && a.position == b.position
  | .applied a as, .applied b bs => p.sameDecl a b && sameList p as bs
  | _, _ => false
/-- The references name the same types in the same order. -/
def sameList (p : Program) : List TypeRef → List TypeRef → Bool
  | [], [] => true
  | a :: as, b :: bs => same p a b && sameList p as bs
  | _, _ => false
end

mutual
/-- The references are the same where they stand in signatures: a parameter of the reference matches the parameter
    of the declaration at its position. -/
def sameSignature (p : Program) : TypeRef → TypeRef → Bool
  | .absent, .absent => true
  | .decl a, .decl b => p.sameDecl a b
  | .param a, .param b => a.position == b.position && a.isMethod == b.isMethod
  | .applied a as, .applied b bs => p.sameDecl a b && sameSignatureList p as bs
  | _, _ => false
def sameSignatureList (p : Program) : List TypeRef → List TypeRef → Bool
  | [], [] => true
  | a :: as, b :: bs => sameSignature p a b && sameSignatureList p as bs
  | _, _ => false
end

end Loom.Program
