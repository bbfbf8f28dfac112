/-!
Structured data as configuration files hold it: scalars, lists and tables.
-/
namespace Loom

/-- A piece of structured data. -/
inductive Datum where
  | null
  | bool (b : Bool)
  | int (n : Int)
  | text (s : String)
  | list (items : List Datum)
  | table (entries : List (String × Datum))
  deriving Inhabited

namespace Datum

/-- No value stands here. -/
def isNull : Datum → Bool
  | .null => true
  | _ => false

/-- The letter without its case. The long s and the sign for kelvin are letters in another dress. -/
def foldCase (c : Char) : Char :=
  if c.toNat = 0x17f then 's' else if c.toNat = 0x212a then 'k' else c.toLower

/-- The names differ at most in the case of their letters. -/
def sameButCase (a b : String) : Bool := a.toList.map foldCase == b.toList.map foldCase

/-- The entry of a table under a key. -/
def get? (ignoreCase : Bool) (key : String) (entries : List (String × Datum)) : Option Datum :=
  match entries.lookup key with
  | some d => some d
  | none =>
    if ignoreCase then (entries.find? fun (k,_) => sameButCase k key).map Prod.snd else none

end Datum
end Loom
