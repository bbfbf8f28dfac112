/-!
White space, and text without it at both ends.
-/
namespace Loom.Text

/-- The characters that count as white space. -/
def isBlank (c : Char) : Bool :=
  let n := c.toNat
  (9 ≤ n && n ≤ 13) || n = 0x20 || n = 0x85 || n = 0xa0 || n = 0x1680 || (0x2000 ≤ n && n ≤ 0x200a) ||
    n = 0x2028 || n = 0x2029 || n = 0x202f || n = 0x205f || n = 0x3000

/-- The list without blank elements at both ends. -/
def trimBy {α : Type} (blank : α → Bool) (xs : List α) : List α :=
  ((xs.dropWhile blank).reverse.dropWhile blank).reverse

/-- The text without white space at both ends. -/
def trim (cs : List Char) : List Char := trimBy isBlank cs

/-- A string without white space at both ends. -/
def trimString (s : String) : String := String.ofList (trim s.toList)

end Loom.Text
