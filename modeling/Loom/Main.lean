import Loom.CommandLine
import Loom.Datum.Written
import Loom.Text.Size

/-!
The program: reads the files that a command can need, carries it out and writes what it wrote. Modules and
configurations are files of structured data; the binary form of a module has its data after the header.
-/
namespace Loom.Main

open Text (Octets)

/-- The octets that a file is written with. -/
def encode (path : String) : Content → List UInt8
  | .module d =>
    let text := (Octets.ofString (d.toDatum.render ++ "\n")).toList
    if Path.isBinary path then Document.mark ++ [1] ++ text else text
  | .data d => (Octets.ofString (d.render ++ "\n")).toList
  | .octets bs => bs

/-- What a file with the given octets holds. -/
def decode (path : String) (bs : List UInt8) : Content :=
  let text? (bs : List UInt8) : Option Datum := (Octets.mk bs).toString?.bind Datum.parse?
  let found := if Path.isBinary path then
      if Document.headerFault? bs = none then ((text? (bs.drop 5)).bind Document.ofDatum?).map Content.module else none
    else (text? bs).map Content.data
  found.getD (.octets bs)

/-- The places that a command can need: its arguments, what they come by, and the configurations above them. -/
def places (files : Files) (args : List String) : List (List String) :=
  (args.flatMap fun a => files.placesOn a ++ files.configPlaces a).eraseDups

/-- Adds what stands at a place to the tree. -/
def readInto (files : Files) (place : List String) : IO Files := do
  let path := "/" ++ "/".intercalate place
  try
    let bytes ← IO.FS.readBinFile path
    return { files with entries := (place,decode path bytes.toList) :: files.entries }
  catch
    | .inappropriateType _ 21 _ => return { files with directories := place :: files.directories }
    | _ => return files

end Loom.Main

open Loom Loom.Main in
def main (args : List String) : IO UInt32 := do
  let root := toString (← IO.currentDir)
  let files : Files := { root }
  let files ← (places files args).foldlM readInto files
  let size (path : String) (c : Content) : String := Text.sizeText (encode path c).length
  let o := CommandLine.execute size args files
  o.written.forM fun (path,c) => IO.FS.writeBinFile path ⟨(encode path c).toArray⟩
  let out ← IO.getStdout
  let err ← IO.getStderr
  err.write ⟨o.err.toList.toArray⟩
  out.write ⟨o.out.toList.toArray⟩
  return o.exit.toUInt32
