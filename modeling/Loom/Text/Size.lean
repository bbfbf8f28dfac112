/-!
Sizes of files in decimal units.
-/
namespace Loom.Text

/-- A number of tenths without its fraction, where a half goes to the even neighbour. -/
def roundTenths (n : Nat) : Nat :=
  let whole := n / 10
  if n % 10 > 5 || (n % 10 = 5 && whole % 2 = 1) then whole + 1 else whole

/-- The size in the first unit that leaves less than a thousand of it. Below ten of a unit there is one decimal. -/
def sizeIn (size unit : Nat) : List String → String
  | [] => toString size ++ " B"
  | name :: rest =>
    if 1000 * unit ≤ size && !rest.isEmpty then sizeIn size (1000 * unit) rest
    else
      let tenths := (20 * size + unit) / (2 * unit)
      if tenths < 100 then toString (tenths / 10) ++ "." ++ toString (tenths % 10) ++ " " ++ name
      else toString (roundTenths tenths) ++ " " ++ name

def sizeText (size : Nat) : String :=
  if size < 10 then toString size ++ " B" else sizeIn size 1 ["B","kB","MB","GB","TB","PB","EB"]

end Loom.Text
