import Loom.Text.Octets

/-!
Bracketed text. Angle brackets and parentheses count together: a separator splits text only outside of them.
-/
namespace Loom.Text.Brackets

/-- What text is made of: characters, or octets. -/
class Letter (α : Type) where
  /-- The character with the number of the letter. -/
  char : α → Char

instance : Letter Char := ⟨id⟩
instance : Letter UInt8 := ⟨fun b => Char.ofNat b.toNat⟩

variable {α : Type} [Letter α]

/-- Opens a bracketed part. -/
def isOpening (c : α) : Bool := Letter.char c = '<' || Letter.char c = '('

/-- Closes a bracketed part. -/
def isClosing (c : α) : Bool := Letter.char c = '>' || Letter.char c = ')'

/-- Puts a letter in front of the first segment. -/
def pushFirst (c : α) : List (List α) → List (List α)
  | [] => [[c]]
  | first :: rest => (c :: first) :: rest

/-- The segments between the separators outside of brackets, from a given depth. There are none if a bracket
    closes too early or stays open. -/
def segments [DecidableEq α] (sep : α) : List α → Nat → Option (List (List α))
  | [], depth => if depth = 0 then some [[]] else none
  | c :: rest, depth =>
    if isOpening c then (segments sep rest (depth + 1)).map (pushFirst c)
    else if isClosing c then
      if depth = 0 then none else (segments sep rest (depth - 1)).map (pushFirst c)
    else if c = sep && depth = 0 then (segments sep rest 0).map ([] :: ·)
    else (segments sep rest depth).map (pushFirst c)

/-- The trimmed segments between the separators outside of brackets; blank text has none. -/
def splitBy [DecidableEq α] (trim : List α → List α) (sep : α) (cs : List α) : Option (List (List α)) :=
  if (trim cs).isEmpty then some [] else (segments sep cs 0).map (·.map trim)

def split (sep : Char) (cs : List Char) : Option (List (List Char)) := splitBy trim sep cs

def splitOctets (sep : UInt8) (bs : List UInt8) : Option (List (List UInt8)) := splitBy trimOctets sep bs

/-- The text around the first separator at depth zero, counting from a given depth. -/
def cutFrom (sep : Char) : Int → List Char → Option (List Char × List Char)
  | _, [] => none
  | depth, c :: rest =>
    if isOpening c then (cutFrom sep (depth + 1) rest).map fun (a,b) => (c :: a,b)
    else if isClosing c then (cutFrom sep (depth - 1) rest).map fun (a,b) => (c :: a,b)
    else if c = sep && depth = 0 then some ([],rest)
    else (cutFrom sep depth rest).map fun (a,b) => (c :: a,b)

/-- The text around the first separator outside of brackets. -/
def cut (sep : Char) (cs : List Char) : Option (List Char × List Char) := cutFrom sep 0 cs

/-- The text before the angle bracket that closes the first open one, counting from a given depth. -/
def beforeClosingFrom : Int → List Char → Option (List Char)
  | _, [] => none
  | depth, c :: rest =>
    if c = '<' then (beforeClosingFrom (depth + 1) rest).map (c :: ·)
    else if c = '>' then
      if depth = 1 then some [] else (beforeClosingFrom (depth - 1) rest).map (c :: ·)
    else (beforeClosingFrom depth rest).map (c :: ·)

/-- The text before the angle bracket that closes the first open one. -/
def beforeClosing (cs : List Char) : Option (List Char) := beforeClosingFrom 0 cs

/-- The octet position of the angle bracket that closes the first open one. -/
def closingIndex (cs : List Char) : Option Nat :=
  (beforeClosing cs).map fun before => before.foldr (fun c rest => c.utf8Size + rest) 0

/-- Every reading of the text as a head applied to a bracketed list that ends the text, shortest head first. -/
def applications : List Char → List (List Char × List Char)
  | [] => []
  | c :: rest =>
    let later := (applications rest).map fun (head,inner) => (c :: head,inner)
    if c = '<' && (beforeClosing (c :: rest)).map List.length = some rest.length then
      ([],rest.dropLast) :: later
    else later

end Loom.Text.Brackets
