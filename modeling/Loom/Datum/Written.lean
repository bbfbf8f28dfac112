import Loom.Datum
import Loom.Text.Blank
import Loom.Text.Decimal
import Loom.Text.Quoted

/-!
The written form of structured data: tables in braces, lists in brackets, texts and keys in quotes. Blanks between the
parts do not count.
-/
namespace Loom.Datum

mutual
def render : Datum → String
  | .null => "null"
  | .bool b => if b then "true" else "false"
  | .int n => toString n
  | .text s => Text.quote s
  | .list items => "[" ++ ", ".intercalate (renderItems items) ++ "]"
  | .table entries => "\x7b" ++ ", ".intercalate (renderEntries entries) ++ "\x7d"
def renderItems : List Datum → List String
  | [] => []
  | d :: rest => render d :: renderItems rest
/-- Writes the entries of a table. -/
def renderEntries : List (String × Datum) → List String
  | [] => []
  | (key,d) :: rest => (Text.quote key ++ ": " ++ render d) :: renderEntries rest
end

def skip (cs : List Char) : List Char := cs.dropWhile Text.isBlank

/-- The rest of a quoted text up to its closing quote, and what follows. -/
def untilQuote : List Char → Option (List Char × List Char)
  | [] => none
  | '\\' :: c :: rest => (untilQuote rest).map fun (a,b) => ('\\' :: c :: a,b)
  | c :: rest => if c = '"' then some (['"'],rest) else (untilQuote rest).map fun (a,b) => (c :: a,b)

def readQuoted (cs : List Char) : Option (String × List Char) := do
  let (literal,rest) ← untilQuote cs
  let text ← Text.Quoted.decode ('"' :: literal)
  return (← text.toString?,rest)

def readWord (cs : List Char) : Option (Datum × List Char) :=
  let isWord (c : Char) : Bool := c.isAlphanum || c = '-' || c = '+'
  let rest := cs.dropWhile isWord
  match String.ofList (cs.takeWhile isWord) with
  | "null" => some (.null,rest)
  | "true" => some (.bool true,rest)
  | "false" => some (.bool false,rest)
  | _ =>
    match Text.Decimal.parse (cs.takeWhile isWord) with
    | .ok n => some (.int n,rest)
    | .error _ => none

mutual
/-- Reads a datum, down to a bounded depth. -/
def readWithin : Nat → List Char → Option (Datum × List Char)
  | 0, _ => none
  | n + 1, cs =>
    match skip cs with
    | '"' :: rest => (readQuoted rest).map fun (s,rest) => (.text s,rest)
    | '[' :: rest =>
      match skip rest with
      | ']' :: rest => some (.list [],rest)
      | rest => (readItems n rest).map fun (items,rest) => (.list items,rest)
    | '\x7b' :: rest =>
      match skip rest with
      | '\x7d' :: rest => some (.table [],rest)
      | rest => (readEntries n rest).map fun (entries,rest) => (.table entries,rest)
    | rest => readWord rest
/-- Reads items up to the closing bracket. -/
def readItems : Nat → List Char → Option (List Datum × List Char)
  | 0, _ => none
  | n + 1, cs => do
    let (d,rest) ← readWithin n cs
    match skip rest with
    | ',' :: rest => do
      let (items,rest) ← readItems n rest
      return (d :: items,rest)
    | ']' :: rest => return ([d],rest)
    | _ => none
/-- Reads entries up to the closing brace. -/
def readEntries : Nat → List Char → Option (List (String × Datum) × List Char)
  | 0, _ => none
  | n + 1, cs =>
    match skip cs with
    | '"' :: rest => do
      let (key,rest) ← readQuoted rest
      let ':' :: rest := skip rest | none
      let (d,rest) ← readWithin n rest
      match skip rest with
      | ',' :: rest => do
        let (entries,rest) ← readEntries n rest
        return ((key,d) :: entries,rest)
      | '\x7d' :: rest => return ([(key,d)],rest)
      | _ => none
    | _ => none
end

/-- Reads a text that holds one datum. No part is deeper than the text is long. -/
def parse? (s : String) : Option Datum :=
  match readWithin (s.length + 1) s.toList with
  | some (d,rest) => if (skip rest).isEmpty then some d else none
  | none => none

end Loom.Datum
